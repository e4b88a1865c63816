import BraceLang.Grammar.Statement
import BraceLang.Proofs.Body
import BraceLang.Proofs.Precedence

/-!
# Phrases and their endings

A statement without a block is read up to what ends it.
-/

namespace BraceLang

open List Parse

def statementKinds : List TokenKind :=
  Level.disjunction.startKinds ++ [.passKw, .returnKw, .raiseKw, .ifKw, .whileKw, .forKw]

/-- Ends of line, and then the start of a statement or the closing brace. -/
inductive Resumes (tokens : Array Token) : Nat → Prop where
  | here {i : Nat} {kind : TokenKind} (h : KindAt tokens i kind) (hkind : kind ∈ .rbrace :: statementKinds) :
      Resumes tokens i
  | line {i : Nat} (h : KindAt tokens i .newline) (rest : Resumes tokens (i + 1)) : Resumes tokens i

inductive Closes (tokens : Array Token) (j : Nat) : Bool → Prop where
  | semicolon (h : KindAt tokens j .semicolon) : Closes tokens j true
  | newline (h : KindAt tokens j .newline) (rest : Resumes tokens (j + 1)) : Closes tokens j false
  | brace (h : KindAt tokens j .rbrace) : Closes tokens j false

/-- A phrase that ends at `j` is left with the cursor at `k`: behind its semicolon, or with nothing but ends of line in
between. -/
def Leaves (tokens : Array Token) (j : Nat) : Bool → Nat → Prop
  | true, k => k = j + 1
  | false, k => j ≤ k ∧ ∀ l, j ≤ l → l < k → KindAt tokens l .newline

section

variable {tokens : Array Token} {i j : Nat} {semicolon : Bool}

/-! ### Looking past ends of line -/

theorem Resumes.kindAt (h : Resumes tokens i) :
    ∃ kind ∈ .newline :: .rbrace :: statementKinds, KindAt tokens i kind := by
  cases h with
  | here h hkind => exact ⟨_, mem_cons_of_mem _ hkind, h⟩
  | line h => exact ⟨_, mem_cons_self .., h⟩

theorem Resumes.lines (h : Resumes tokens i) :
    ∃ l, Lines tokens i l ∧ ∃ kind ∈ .rbrace :: statementKinds, KindAt tokens l kind := by
  induction h with
  | here h hkind => exact ⟨_, lines_self tokens _, _, hkind, h⟩
  | line h _ ih =>
    obtain ⟨l, hl, hk⟩ := ih
    exact ⟨l, hl.cons h, hk⟩

theorem tokenAt?_of_getElem? {t : Token} (h : tokens[i]? = some t) : tokenAt? tokens i = some t := by
  unfold tokenAt?
  rw [if_pos (by omega), Int.toNat_natCast, h]

variable {kind : TokenKind}

theorem search_here {n : Nat} (h : KindAt tokens i kind) (hkind : kind ∉ [.newline, .comment]) :
    nextKindFrom.search tokens (n + 1) i = some kind := by
  have hlt := h.lt_size
  obtain ⟨t, ht, rfl⟩ := h
  simp only [mem_cons, not_mem_nil, or_false] at hkind
  rw [nextKindFrom.search, if_pos (by omega), tokenAt?_of_getElem? ht]
  exact if_neg hkind

theorem search_resumes (h : Resumes tokens i) :
    ∃ kind ∈ .rbrace :: statementKinds, ∀ n, tokens.size < i + n → nextKindFrom.search tokens n i = some kind := by
  induction h with
  | @here i kind h hkind =>
    refine ⟨kind, hkind, fun n hn => ?_⟩
    have hlt := h.lt_size
    obtain ⟨n, rfl⟩ : ∃ n', n = n' + 1 := ⟨n - 1, by omega⟩
    exact search_here h ((by decide : ∀ kind ∈ .rbrace :: statementKinds, kind ∉ [.newline, .comment]) kind hkind)
  | @line i h _ ih =>
    obtain ⟨kind, hkind, hsearch⟩ := ih
    refine ⟨kind, hkind, fun n hn => ?_⟩
    have hlt := h.lt_size
    obtain ⟨n, rfl⟩ : ∃ n', n = n' + 1 := ⟨n - 1, by omega⟩
    obtain ⟨t, ht, hk⟩ := h
    rw [nextKindFrom.search, if_pos (by omega), tokenAt?_of_getElem? ht]
    exact (if_pos (.inl hk)).trans (hsearch n (by omega))

def NoColon (tokens : Array Token) (i : Nat) : Prop :=
  ∃ kind, kind ≠ .colon ∧ ∀ c, nextKindFrom (i : Nat) tokens c = .ok kind c

theorem nextKindFrom_of_search (hn : n = (tokens.size - (i : Nat) : Int).toNat + 1)
    (h : nextKindFrom.search tokens n i = some kind) (c : Int) : nextKindFrom i tokens c = .ok kind c := by
  subst hn
  unfold nextKindFrom
  rw [h]

theorem nextKindFrom_here (h : KindAt tokens i kind) (hkind : kind ∉ [.newline, .comment]) (c : Int) :
    nextKindFrom i tokens c = .ok kind c := nextKindFrom_of_search rfl (search_here h hkind) c

theorem noColon_of_kindAt (h : KindAt tokens i kind) (hkind : kind ∉ [.colon, .newline, .comment]) :
    NoColon tokens i := by
  rw [mem_cons, not_or] at hkind
  exact ⟨kind, hkind.1, nextKindFrom_here h hkind.2⟩

theorem Resumes.noColon (h : Resumes tokens i) : NoColon tokens i := by
  obtain ⟨kind, hkind, hsearch⟩ := search_resumes h
  have hcolon : kind ≠ .colon := (by decide : ∀ kind ∈ .rbrace :: statementKinds, kind ≠ .colon) kind hkind
  exact ⟨kind, hcolon, nextKindFrom_of_search rfl (hsearch _ (by omega))⟩

theorem Closes.noColon (h : Closes tokens j semicolon) : NoColon tokens j := by
  cases h with
  | semicolon h | brace h => exact noColon_of_kindAt h (by decide)
  | newline h rest => exact (Resumes.line h rest).noColon

/-! ### Endings -/

theorem leaves_self (tokens : Array Token) (j : Nat) : Leaves tokens j false j :=
  ⟨Nat.le_refl j, fun l h h' => absurd h' (by omega)⟩

/-- The kinds of token at which an expression before an ending is left. -/
def closeKinds : List TokenKind := .semicolon :: .newline :: .rbrace :: statementKinds

theorem Closes.kindAt (h : Closes tokens j semicolon) :
    ∃ kind ∈ [.semicolon, .newline, .rbrace], KindAt tokens j kind := by
  cases h with
  | semicolon h | newline h | brace h => exact ⟨_, by decide, h⟩

theorem Closes.accept (h : Closes tokens j semicolon) :
    ∃ k, accept [.semicolon] tokens j = .ok semicolon (k : Nat) ∧ Leaves tokens j semicolon k := by
  cases h with
  | semicolon h => exact ⟨j + 1, accept_hit h (by decide), rfl⟩
  | newline h | brace h => exact ⟨j, accept_miss h (by decide), leaves_self tokens j⟩

/-- An expression before an ending steps over at most two ends of line, and then the semicolon is accepted. -/
theorem Closes.stops (h : Closes tokens j semicolon) :
    ∃ k, Stops tokens .disjunction j k ∧ (∃ kind ∈ closeKinds, KindAt tokens k kind) ∧
      ∃ l, Parse.accept [.semicolon] tokens k = .ok semicolon (l : Nat) ∧ Leaves tokens j semicolon l := by
  cases h with
  | semicolon h => exact ⟨j, stops_of_kindAt h (by decide), ⟨_, by decide, h⟩, (Closes.semicolon h).accept⟩
  | brace h => exact ⟨j, stops_of_kindAt h (by decide), ⟨_, by decide, h⟩, (Closes.brace h).accept⟩
  | newline h rest =>
    obtain ⟨l, hl, kind, hkind, hk⟩ := rest.lines
    have hkinds := (by decide : ∀ kind ∈ .rbrace :: statementKinds,
      kind ∉ [.newline, .andKw, .orKw] ∧ kind ∉ [.semicolon] ∧ kind ∈ closeKinds) kind hkind
    have hlt := hl.1
    have hleaves := (hl.cons h).within (l := min (j + 2) l) (Nat.le_refl j) (by omega) (by omega)
    have hrest := (hl.cons h).within (k := min (j + 2) l) (by omega) (by omega) (Nat.le_refl l)
    obtain ⟨kind', hk', hsemicolon⟩ := hrest.ends hk hkinds.2.1 (by decide)
    refine ⟨_, stops_of_lines (hl.cons h) hk hkinds.1 (by omega), ?_, _, accept_miss hk' hsemicolon, hleaves⟩
    rcases Nat.lt_or_eq_of_le hrest.1 with hlt | heq
    · exact ⟨_, by decide, hrest.2 _ (Nat.le_refl _) hlt⟩
    · exact ⟨kind, hkinds.2.2, by rwa [heq]⟩

/-! ### Expressions before an ending -/

variable {n value : Node} {ws us vs : List Word}

theorem expression_of_expression? (hlt : i < tokens.size) (h : expression? tokens i = .ok n k)
    (hp : n.isPresent) : expression tokens i = .ok n k := by
  have hpeek := peek_ok (Array.getElem?_eq_getElem hlt)
  rw [expression, bind_ok hpeek, bind_ok h, if_pos hp]
  rfl

theorem Reads.expression_before (h : Reads .disjunction n ws) (hs : Stands tokens i ws)
    (hk : KindAt tokens (i + ws.length) kind) (hend : kind ∉ wholeMarks) :
    Parse.expression tokens i = .ok n (i + ws.length : Nat) := by
  refine expression_of_expression? (hs.lt_size h.starts.length_pos) ?_ h.present
  refine h.expression hs (stops_of_kindAt hk fun hm => hend (mem_append_left _ hm)) ?_
  exact ⟨kind, hk, fun hm => hend (mem_append_right _ hm)⟩

theorem ends_of_closeKinds (h : ∃ kind ∈ closeKinds, KindAt tokens k kind) :
    Ends tokens (.assign :: compoundMarks.map Prod.fst) k ∧ Ends tokens [.colon] k := by
  obtain ⟨kind, hkind, hk⟩ := h
  have hkinds := (by decide : ∀ kind ∈ closeKinds,
    kind ∉ .assign :: compoundMarks.map Prod.fst ∧ kind ∉ [.colon]) kind hkind
  exact ⟨⟨kind, hk, hkinds.1⟩, ⟨kind, hk, hkinds.2⟩⟩

def Reaches (tokens : Array Token) (i : Nat) (n : Node) (j : Nat) (semicolon : Bool) : Prop :=
  ∃ k, expression tokens i = .ok n (k : Nat) ∧ Ends tokens [.colon] k ∧
    ∃ l, accept [.semicolon] tokens k = .ok semicolon (l : Nat) ∧ Leaves tokens j semicolon l

theorem Reads.reaches (h : Reads .disjunction n ws) (hs : Stands tokens i ws)
    (hclose : Closes tokens (i + ws.length) semicolon) : Reaches tokens i n (i + ws.length) semicolon := by
  obtain ⟨k, hstop, hkind, hrest⟩ := hclose.stops
  obtain ⟨hassign, hcolon⟩ := ends_of_closeKinds hkind
  have hread : expression? tokens i = .ok n k := h.expression hs hstop hassign
  exact ⟨k, expression_of_expression? (hs.lt_size h.starts.length_pos) hread h.present, hcolon, hrest⟩

theorem reaches_assignment (mark : Mark) (htarget : Reads .disjunction n us) (hvalue : Reads .disjunction value vs)
    (hs : Stands tokens i (us ++ mark.word :: vs)) (hclose : Closes tokens (i + us.length + 1 + vs.length) semicolon) :
    ∃ position, Reaches tokens i (.assignment n value (some mark.word.text) none position)
      (i + us.length + 1 + vs.length) semicolon := by
  obtain ⟨hus, hrest⟩ := stands_append.1 hs
  obtain ⟨⟨t, ht, htkind, httext⟩, hvs⟩ := id hrest
  obtain ⟨k, hstop, hkind, hsemicolon⟩ := hclose.stops
  obtain ⟨hassign, hcolon⟩ := ends_of_closeKinds hkind
  obtain ⟨hlast, _, hlastAt⟩ := hkind
  have hsize := hlastAt.lt_size
  have hle := hstop.le
  refine ⟨⟨t.line, t.column⟩, k, ?_, hcolon, hsemicolon⟩
  -- the target stops at the mark, and the value is one expression further in
  have hmark := hrest.kindAt
  have hbudget : (tokens.size - i : Int).toNat + 2 = (tokens.size - i : Int).toNat + 1 + 1 := rfl
  have hread : disjunction (expressionWithin ((tokens.size - i : Int).toNat + 1)) tokens i =
      .ok n (i + us.length : Nat) :=
    htarget.reads (by omega) hus (stops_of_kindAt hmark (by cases mark <;> decide))
  have hright : expressionWithin ((tokens.size - i : Int).toNat + 1) tokens (i + us.length + 1 : Nat) = .ok value k :=
    hvalue.whole (by omega) hvs hstop hassign
  have hstep : advance tokens (i + us.length : Nat) = .ok t (i + us.length + 1 : Nat) :=
    advance_ok ht (by rw [htkind]; cases mark <;> decide)
  refine expression_of_expression? (hus.lt_size htarget.starts.length_pos) ?_ rfl
  show expressionWithin ((tokens.size - i : Int).toNat + 2) tokens i = _
  rw [hbudget, expressionWithin, assigning, bind_ok hread, if_neg (by simp [htarget.present])]
  cases mark with
  | plain =>
    rw [ifCheck_hit hmark (by decide), bind_ok hstep, bind_ok (operand_ok hright hvalue.present), httext]
    rfl
  | plus | minus | times | divide =>
    rw [ifCheck_miss hmark (by decide), ifCheck_hit hmark (by decide), bind_ok hstep,
      bind_ok (operand_ok hright hvalue.present), htkind]
    rfl

/-! ### Statements -/

theorem looksTyped_miss (h : KindAt tokens i kind) (hkind : kind ∉ [.identifier]) :
    looksTyped tokens i = .ok false i := by
  rw [looksTyped, ifCheck_miss h hkind]
  rfl

theorem looksTyped_name (h : KindAt tokens i .identifier)
    (hnext : nextKindFrom (i + 1 : Nat) tokens i = .ok kind i) :
    looksTyped tokens i = .ok (decide (kind = .colon)) i := by
  rw [looksTyped, ifCheck_hit h (by decide)]
  show (nextKindFrom (i + 1 : Nat) >>= fun k => pure (decide (k = .colon))) tokens i = _
  rw [bind_ok hnext]
  rfl

theorem Reads.looksTyped (h : Reads .disjunction n ws) (hs : Stands tokens i ws)
    (hnext : NoColon tokens (i + ws.length)) : Parse.looksTyped tokens i = .ok false i := by
  have hstarts := h.starts
  match ws, hstarts with
  | w :: ws, hstarts =>
    by_cases hname : w.kind = .identifier
    · have hfirst : KindAt tokens i .identifier := hname ▸ hs.kindAt
      have hsecond : NoColon tokens (i + 1) := by
        cases ws with
        | nil => exact hnext
        | cons v =>
          have hlabel : ∀ k ∈ [.colon, .newline, .comment], k ∈ labelMarks := by decide
          exact noColon_of_kindAt hs.2.kindAt fun hm => hstarts.2 v rfl (hlabel _ hm)
      obtain ⟨kind, hcolon, hkind⟩ := hsecond
      rw [looksTyped_name hfirst (hkind i), decide_eq_false hcolon]
    · exact looksTyped_miss hs.kindAt (by simpa using hname)

theorem simpleStep_of_startKinds (statement : Parse Node) (hfirst : KindAt tokens i kind)
    (hkind : kind ∈ Level.disjunction.startKinds) (htyped : looksTyped tokens i = .ok false i) :
    simpleStep statement tokens i = expressionOrTyped tokens i := by
  have hkinds := (by decide : ∀ kind ∈ Level.disjunction.startKinds, kind ∉ [.passKw] ∧ kind ∉ [.finalKw] ∧
    kind ∉ [.returnKw] ∧ kind ∉ [.ifKw] ∧ kind ∉ [.whileKw] ∧ kind ∉ [.forKw] ∧ kind ∉ [.switchKw] ∧
    kind ∉ [.raiseKw] ∧ kind ∉ [.importKw, .fromKw]) kind hkind
  obtain ⟨hpass, hfinal, hreturn, hif, hwhile, hfor, hswitch, hraise, himport⟩ := hkinds
  rw [simpleStep, ifAccept_miss hfirst hpass, ifAccept_miss hfirst hfinal, bind_ok htyped, if_neg (by decide),
    ifAccept_miss hfirst hreturn, ifAccept_miss hfirst hif, ifAccept_miss hfirst hwhile, ifAccept_miss hfirst hfor,
    ifAccept_miss hfirst hswitch, ifAccept_miss hfirst hraise, ifCheck_miss hfirst himport]

theorem simpleStep_expression (statement : Parse Node) (hfirst : KindAt tokens i kind)
    (hkind : kind ∈ Level.disjunction.startKinds) (htyped : looksTyped tokens i = .ok false i)
    (h : Reaches tokens i n j semicolon) :
    ∃ k, simpleStep statement tokens i = .ok (.expression n semicolon) (k : Nat) ∧ Leaves tokens j semicolon k := by
  obtain ⟨k, hread, ⟨_, hk, hcolon⟩, l, hsemicolon, hleaves⟩ := h
  refine ⟨l, ?_, hleaves⟩
  rw [simpleStep_of_startKinds statement hfirst hkind htyped, expressionOrTyped, bind_ok hread, ifAccept_miss hk hcolon,
    bind_ok hsemicolon]
  rfl

theorem optionalValue_ok (style : Style) (v : Option Formula) (keyword : Word)
    (hs : Stands tokens i (keyword :: Phrase.valueWords style v))
    (hclose : Closes tokens (i + (keyword :: Phrase.valueWords style v).length) semicolon) :
    ∃ k l, optionalValue tokens (i + 1 : Nat) = .ok (Phrase.valueNode v) (k : Nat) ∧
      accept [.semicolon] tokens k = .ok semicolon (l : Nat) ∧
      Leaves tokens (i + (keyword :: Phrase.valueWords style v).length) semicolon l := by
  have hend : i + (keyword :: Phrase.valueWords style v).length = i + 1 + (Phrase.valueWords style v).length := by
    rw [length_cons]
    omega
  rw [hend] at hclose ⊢
  cases v with
  | none =>
    obtain ⟨l, hsemicolon, hleaves⟩ := hclose.accept
    obtain ⟨kind, hkind, hk⟩ := hclose.kindAt
    have hne : kind ≠ .eof := (by decide : ∀ kind ∈ [.semicolon, .newline, .rbrace], kind ≠ .eof) kind hkind
    refine ⟨i + 1, l, ?_, hsemicolon, hleaves⟩
    exact (bind_ok (check_hit hk ⟨hne, hkind⟩)).trans rfl
  | some v =>
    have hread := reads_wholeWords style v
    obtain ⟨k, hvalue, _, l, hsemicolon, hleaves⟩ := hread.reaches hs.2 hclose
    obtain ⟨kind, hkind, hfirst⟩ := hread.starts.kindAt hs.2
    have hmiss : kind ∉ [.semicolon, .newline, .rbrace] :=
      (by decide : ∀ kind ∈ Level.disjunction.startKinds, kind ∉ [.semicolon, .newline, .rbrace]) kind hkind
    refine ⟨k, l, ?_, hsemicolon, hleaves⟩
    rw [optionalValue, ifCheck_miss hfirst hmiss]
    exact hvalue

theorem TypeName.isEmpty_text (type : TypeName) : type.text.isEmpty = false := by
  have hword := type.isWord
  rw [Bool.eq_false_iff]
  intro hempty
  rw [String.isEmpty_iff.1 hempty] at hword
  exact hword

theorem typeText_ok (type : TypeName) (hs : Stands tokens i [⟨.identifier, type.text⟩])
    (hk : KindAt tokens (i + 1) kind) (hkind : kind ∈ [.assign, .semicolon, .newline, .rbrace]) :
    typeText tokens i = .ok type.text (i + 1 : Nat) := by
  have hname : KindAt tokens i .identifier := hs.kindAt
  obtain ⟨⟨t, ht, htkind, httext⟩, _⟩ := hs
  have htkind : t.kind = .identifier := htkind
  have hne : kind ≠ .eof := (by decide : ∀ kind ∈ [.assign, .semicolon, .newline, .rbrace], kind ≠ .eof) kind hkind
  have hfirst : typeStep ([], 0) tokens i = .ok (.inl ([type.text], 0)) (i + 1 : Nat) := by
    rw [typeStep]
    rw [ifCheck_miss hname (by decide), ifCheck_hit hname (by decide), bind_ok (advance_ok ht (by rw [htkind]; decide)),
      httext]
    rfl
  have hsecond : typeStep ([type.text], 0) tokens (i + 1 : Nat) = .ok (.inr [type.text]) (i + 1 : Nat) := by
    rw [typeStep]
    rw [ifCheck_hit hk ⟨hne, hkind⟩]
    rfl
  have hparts : iterate typeStep ([], 0) tokens i = .ok [type.text] (i + 1 : Nat) :=
    iterate_next hname.lt_size (by omega) hfirst (iterate_done hsecond)
  have hjoin : trim (String.join [type.text]) = type.text := by
    rw [String.join_cons, String.join_nil, String.append_empty, type.isWord.trim_eq]
  rw [typeText, bind_ok hparts, hjoin]
  rfl

theorem typedRest_ok (style : Style) (target : Node) (type : TypeName) (v : Option Formula)
    (hs : Stands tokens i (⟨.identifier, type.text⟩ :: Phrase.initialWords style v))
    (hclose : Closes tokens (i + 1 + (Phrase.initialWords style v).length) semicolon) :
    ∃ k, typedRest target tokens i = .ok (.expression
        (.assignment target (Phrase.valueNode v) (v.map fun _ => "=") (some type.text) {}) semicolon) (k : Nat) ∧
      Leaves tokens (i + 1 + (Phrase.initialWords style v).length) semicolon k := by
  have htype : Stands tokens i [⟨.identifier, type.text⟩] := ⟨hs.1, trivial⟩
  cases v with
  | none =>
    obtain ⟨k, hsemicolon, hleaves⟩ := hclose.accept
    obtain ⟨kind, hkind, hk⟩ : ∃ kind ∈ [.semicolon, .newline, .rbrace], KindAt tokens (i + 1) kind := hclose.kindAt
    have hkinds := (by decide : ∀ kind ∈ [.semicolon, .newline, .rbrace],
      kind ∈ [.assign, .semicolon, .newline, .rbrace] ∧ kind ∉ [.assign]) kind hkind
    refine ⟨k, ?_, hleaves⟩
    rw [typedRest, bind_ok (typeText_ok type htype hk hkinds.1), if_neg (by simp [type.isEmpty_text])]
    show (accept [.assign] >>= _) tokens (i + 1 : Nat) = _
    rw [bind_ok (accept_miss hk hkinds.2)]
    exact (bind_ok hsemicolon).trans rfl
  | some v =>
    have hassign : KindAt tokens (i + 1) .assign := hs.2.kindAt
    have hend : i + 1 + (Phrase.initialWords style (some v)).length = i + 1 + 1 + (v.wholeWords style).length := by
      rw [Phrase.initialWords, length_cons]
      omega
    rw [hend] at hclose ⊢
    obtain ⟨k, hvalue, _, l, hsemicolon, hleaves⟩ := (reads_wholeWords style v).reaches hs.2.2 hclose
    refine ⟨l, ?_, hleaves⟩
    rw [typedRest, bind_ok (typeText_ok type htype hassign (by decide)), if_neg (by simp [type.isEmpty_text])]
    show (accept [.assign] >>= _) tokens (i + 1 : Nat) = _
    rw [bind_ok (accept_hit hassign (by decide)), if_pos rfl, bind_ok hvalue]
    exact (bind_ok hsemicolon).trans rfl

theorem Formula.unplaced_expression (v : Formula) (semicolon : Bool) :
    (Node.expression v.node semicolon).unplaced = .expression v.node semicolon := by
  cases v with
  | binary o => cases o <;> rfl
  | _ => rfl

/-- A phrase in front of one of its endings is read as its tree. -/
theorem phrase_ok (style : Style) (p : Phrase) (statement : Parse Node) (hs : Stands tokens i (p.words style))
    (hclose : Closes tokens (i + (p.words style).length) semicolon) :
    ∃ n k, simpleStep statement tokens i = .ok n (k : Nat) ∧ n.unplaced = p.node semicolon ∧ n.isPresent ∧
      Leaves tokens (i + (p.words style).length) semicolon k := by
  cases p with
  | pass =>
    have hpass : KindAt tokens i .passKw := hs.kindAt
    obtain ⟨k, hsemicolon, hleaves⟩ := hclose.accept
    refine ⟨.pass semicolon, k, ?_, rfl, rfl, hleaves⟩
    rw [simpleStep, ifAccept_hit hpass (by decide)]
    have hsemicolon : accept [.semicolon] tokens (i + 1 : Nat) = .ok semicolon (k : Nat) := hsemicolon
    rw [bind_ok hsemicolon]
    rfl
  | returns v =>
    have hreturn : KindAt tokens i .returnKw := hs.kindAt
    obtain ⟨k, l, hvalue, hsemicolon, hleaves⟩ := optionalValue_ok style v _ hs hclose
    refine ⟨.returns (Phrase.valueNode v) semicolon, l, ?_, rfl, rfl, hleaves⟩
    rw [simpleStep, ifAccept_miss hreturn (by decide), ifAccept_miss hreturn (by decide),
      bind_ok (looksTyped_miss hreturn (by decide)), if_neg (by decide), ifAccept_hit hreturn (by decide), returnRest,
      bind_ok hvalue, bind_ok hsemicolon]
    rfl
  | raises v =>
    have hraise : KindAt tokens i .raiseKw := hs.kindAt
    obtain ⟨k, l, hvalue, hsemicolon, hleaves⟩ := optionalValue_ok style v _ hs hclose
    refine ⟨.raises (Phrase.valueNode v) semicolon, l, ?_, rfl, rfl, hleaves⟩
    rw [simpleStep, ifAccept_miss hraise (by decide), ifAccept_miss hraise (by decide),
      bind_ok (looksTyped_miss hraise (by decide)), if_neg (by decide)]
    repeat rw [ifAccept_miss hraise (by decide)]
    rw [ifAccept_hit hraise (by decide), raiseRest, bind_ok hvalue, bind_ok hsemicolon]
    rfl
  | expression v =>
    have hread := reads_wholeWords style v
    obtain ⟨kind, hkind, hfirst⟩ := hread.starts.kindAt hs
    obtain ⟨k, hstep, hleaves⟩ := simpleStep_expression statement hfirst hkind (hread.looksTyped hs hclose.noColon)
      (hread.reaches hs hclose)
    exact ⟨_, k, hstep, v.unplaced_expression semicolon, rfl, hleaves⟩
  | assign place mark v =>
    have hplace := reads_wholeWords style place.formula
    have hend : i + (Phrase.words style (.assign place mark v)).length =
        i + (place.formula.wholeWords style).length + 1 + (v.wholeWords style).length := by
      rw [Phrase.words, length_append, length_cons]
      omega
    rw [hend] at hclose ⊢
    obtain ⟨hleft, hright⟩ := stands_append.1 hs
    obtain ⟨position, hreaches⟩ := reaches_assignment mark hplace (reads_wholeWords style v) hs hclose
    obtain ⟨kind, hkind, hfirst⟩ := hplace.starts.kindAt hleft
    have hlook : NoColon tokens (i + (place.formula.wholeWords style).length) :=
      noColon_of_kindAt hright.kindAt (by cases mark <;> decide)
    obtain ⟨k, hstep, hleaves⟩ := simpleStep_expression statement hfirst hkind (hplace.looksTyped hleft hlook) hreaches
    exact ⟨_, k, hstep, rfl, rfl, hleaves⟩
  | declare s type v =>
    have hname : KindAt tokens i .identifier := hs.kindAt
    have hcolon : KindAt tokens (i + 1) .colon := hs.2.kindAt
    have hend : i + (Phrase.words style (.declare s type v)).length =
        i + 1 + 1 + 1 + (Phrase.initialWords style v).length := by
      rw [Phrase.words, length_cons, length_cons, length_cons]
      omega
    rw [hend] at hclose ⊢
    obtain ⟨⟨t, ht, _, httext⟩, _⟩ := id hs
    obtain ⟨k, hrest, hleaves⟩ := typedRest_ok style (.identifier s) type v hs.2.2 hclose
    have hlook : looksTyped tokens i = .ok true i :=
      looksTyped_name hname (nextKindFrom_here hcolon (by decide) i)
    refine ⟨.expression (.assignment (.identifier s) (Phrase.valueNode v) (v.map fun _ => "=") (some type.text) {})
      semicolon, k, ?_, rfl, rfl, hleaves⟩
    rw [simpleStep, ifAccept_miss hname (by decide), ifAccept_miss hname (by decide), bind_ok hlook, if_pos rfl,
      typedDeclaration]
    refine expect_bind hname (by decide) fun t' ht' => ?_
    refine expect_bind hcolon (by decide) fun _ _ => ?_
    obtain rfl : t' = t := Option.some.inj (ht'.symm.trans ht)
    have htext : t'.text = s := by rw [Token.text, httext, Option.getD_some]
    rw [htext]
    exact hrest

end

end BraceLang
