import BraceLang.Proofs.EmittedText
import BraceLang.Proofs.Precedence
import BraceLang.Proofs.QuotedText

/-!
# Emitted text is read back

The text of a formula is one line, and its tokens are the words of the formula in the full style.
-/

namespace BraceLang

open List Parse

variable {fit : List Char → Prop} {kind : TokenKind} {cs : List Char} {ws : List Word} {s t : String}

/-! ### Pieces of text -/

/-- A text on one line that is read as the words, in front of any rest that is fit to follow.  None of the words is a
comment, so that each becomes a token. -/
structure Spells (fit : List Char → Prop) (s : String) (ws : List Word) : Prop where
  scans : Scans fit s.toList ws
  oneLine : '\n' ∉ s.toList
  noComment : ∀ w ∈ ws, w.kind ≠ .comment

def Anything (_ : List Char) : Prop := True

section

variable {fit' : List Char → Prop} {us vs : List Word}

theorem Spells.append (h : Spells fit s us) (h' : Spells fit' t vs)
    (hfit : ∀ rest, fit' rest → fit (t.toList ++ rest)) : Spells fit' (s ++ t) (us ++ vs) := by
  constructor
  · rw [String.toList_append]
    exact h.scans.append h'.scans hfit
  · rw [String.toList_append, mem_append, not_or]
    exact ⟨h.oneLine, h'.oneLine⟩
  · intro w hw
    rcases mem_append.1 hw with hw | hw
    · exact h.noComment w hw
    · exact h'.noComment w hw

theorem Spells.andThen (h : Spells Anything s us) (h' : Spells fit t vs) : Spells fit (s ++ t) (us ++ vs) :=
  h.append h' fun _ _ => trivial

theorem Spells.weaken (h : Spells Anything s us) : Spells fit s us :=
  ⟨h.scans.mono fun _ _ => trivial, h.oneLine, h.noComment⟩

theorem spells_empty : Spells fit "" [] := by
  constructor
  · intro column rest _
    exact ⟨column, rfl, rfl⟩
  · simp
  · simp

end

def symbols : List (Char × TokenKind) :=
  [(')', .rparen), (']', .rbracket), ('\x7d', .rbrace), ('(', .lparen), ('[', .lbracket), (',', .comma), (':', .colon),
    ('\x7b', .lbrace)]

section

variable {c : Char}

theorem scans_of_mem_symbols (h : (c, kind) ∈ symbols) : Scans fit [c] [⟨kind, String.ofList [c]⟩] := by
  simp only [symbols, mem_cons, Prod.mk.injEq, not_mem_nil, or_false] at h
  rcases h with ⟨rfl, rfl⟩ | ⟨rfl, rfl⟩ | ⟨rfl, rfl⟩ | ⟨rfl, rfl⟩ | ⟨rfl, rfl⟩ | ⟨rfl, rfl⟩ | ⟨rfl, rfl⟩ |
    ⟨rfl, rfl⟩ <;>
    exact scans_symbol rfl fun _ => rfl

theorem ne_of_mem_symbols (h : (c, kind) ∈ symbols) : '\n' ≠ c ∧ kind ≠ .comment :=
  (by decide : ∀ p ∈ symbols, '\n' ≠ p.1 ∧ p.2 ≠ .comment) _ h

theorem spells_symbol (c : Char) (h : (c, kind) ∈ symbols) (hs : s = String.ofList [c]) :
    Spells Anything s [⟨kind, s⟩] := by
  subst hs
  constructor
  · rw [String.toList_ofList]
    exact scans_of_mem_symbols h
  · simp [(ne_of_mem_symbols h).1]
  · simp [(ne_of_mem_symbols h).2]

theorem spells_spaced (c : Char) (h : (c, kind) ∈ symbols) (hs : s = String.ofList [c, ' ']) :
    Spells Anything s [⟨kind, String.ofList [c]⟩] := by
  subst hs
  constructor
  · rw [String.toList_ofList]
    have hsymbol : Scans Anything [c] [⟨kind, String.ofList [c]⟩] := scans_of_mem_symbols h
    exact hsymbol.append (scans_blank rfl) fun _ _ => trivial
  · simp [(ne_of_mem_symbols h).1]
  · simp [(ne_of_mem_symbols h).2]

theorem spells_blank : Spells Anything " " [] := ⟨scans_blank rfl, by decide, by simp⟩

def BeforeBlank (r : List Char) : Prop := r.head? = some ' '

theorem scans_beforeBlank (hc : isBlank c = false)
    (h : ∀ r, firstLexeme? (c :: (cs ++ ' ' :: r)) = some (kind, c :: cs, ' ' :: r)) :
    Scans BeforeBlank (c :: cs) [⟨kind, String.ofList (c :: cs)⟩] := by
  refine scans_lexeme hc fun rest hrest => ?_
  obtain ⟨r, rfl⟩ := head?_eq_some_iff.1 hrest
  exact h r

theorem spells_sign (o : Sign) : Spells BeforeBlank o.word.text [o.word] := by
  cases o <;> exact ⟨scans_beforeBlank rfl fun _ => rfl, by decide, by decide⟩

theorem spells_operator (o : Operator) : Spells BeforeBlank o.text o.words := by
  have hnot : Spells BeforeBlank "not" [⟨.notKw, "not"⟩] := spells_sign .negation
  cases o
  -- the two operators of two words
  case notInside =>
    have hin : Spells BeforeBlank "in" [⟨.inKw, "in"⟩] := ⟨scans_beforeBlank rfl fun _ => rfl, by decide, by decide⟩
    exact (hnot.append spells_blank fun _ _ => rfl).andThen hin
  case notSame =>
    have his : Spells BeforeBlank "is" [⟨.isKw, "is"⟩] := ⟨scans_beforeBlank rfl fun _ => rfl, by decide, by decide⟩
    exact (his.append spells_blank fun _ _ => rfl).andThen hnot
  all_goals exact ⟨scans_beforeBlank rfl fun _ => rfl, by decide, by decide⟩

end

/-! ### Names and literals -/

theorem spells_word (h : IsWord s.toList) (hkind : TokenKind.ofWord s = kind)
    (hne : kind ≠ .comment) : Spells EndsWord s [⟨kind, s⟩] := by
  subst hkind
  exact ⟨scans_word h, h.notMem (by decide), by simpa using hne⟩

theorem spells_numeral (h : IsNumeral s.toList) : Spells Follows s [⟨.number, s⟩] :=
  ⟨(scans_numeral h).mono fun _ hrest => hrest.endsNumber, h.newline_notMem, by simp⟩

theorem quoteMark_notMem (h : IsPlainText s) : quoteMark s.toList ∉ s.toList := by
  unfold quoteMark
  by_cases hsingle : '\'' ∈ s.toList
  · have hdouble : '"' ∉ s.toList := fun hmem => h.quotes ⟨hmem, hsingle⟩
    simp [hsingle, hdouble]
  · simp [hsingle]

theorem toList_quoted (h : IsPlainText s) :
    (quoted s).toList = quoteMark s.toList :: (s.toList ++ [quoteMark s.toList]) := by
  have hescape : ∀ c ∈ s.toList, escapeChar isPrintable (quoteMark s.toList) c = [c] := by
    intro c hc
    have hprintable := h.printable c hc
    have hmark : c ≠ quoteMark s.toList := fun he => quoteMark_notMem h (he ▸ hc)
    have hbackslash : c ≠ '\\' := fun he => h.backslash (he ▸ hc)
    have hcontrol : ∀ d, isPrintable d = false → c ≠ d := by
      intro d hd he
      rw [he, hd] at hprintable
      cases hprintable
    rw [escapeChar, if_neg (by simp [hmark, hbackslash]), if_neg (hcontrol '\n' (by decide)),
      if_neg (hcontrol '\r' (by decide)), if_neg (hcontrol '\t' (by decide)), if_pos hprintable]
  have hflat : s.toList.flatMap (escapeChar isPrintable (quoteMark s.toList)) = s.toList := by
    rw [flatMap_congr hescape, flatMap_singleton']
  rw [quoted, String.toList_ofList, quoteWith, hflat]

theorem spells_quoted (h : IsPlainText s) : Spells Follows (quoted s) [⟨.string, s⟩] := by
  have hmark := quoteMark_cases s.toList
  constructor
  · rw [toList_quoted h]
    have hform : (.quotedText "" (quoteMark s.toList) false, .string) ∈ lexemes := by
      rcases hmark with he | he <;> rw [he] <;> decide
    have hscans := scans_quoted hform (quoteMark_notMem h)
    refine hscans.mono fun _ hrest d hd => ?_
    obtain ⟨hdouble, hsingle⟩ := hrest.endsQuoted d hd
    rcases hmark with he | he <;> rwa [he]
  · have hline : '\n' ∉ s.toList := fun hmem => absurd (h.printable _ hmem) (by decide)
    rw [toList_quoted h]
    rcases hmark with he | he <;> simp [he, hline]
  · simp

/-! ### Formulas -/

theorem Spells.beforeFollows (h : Spells fit s ws) (hfit : ∀ rest, Follows rest → fit rest) : Spells Follows s ws :=
  ⟨h.scans.mono hfit, h.oneLine, h.noComment⟩

theorem spells_name (h : IsName s) : Spells Follows s [⟨.identifier, s⟩] :=
  (spells_word h.1 h.2 (by decide)).beforeFollows fun _ hrest => hrest.endsWord

/-- The text of an expression.  It does not start with an equals sign, which would join one in front of it. -/
structure SpellsExpression (s : String) (ws : List Word) : Prop extends Spells Follows s ws where
  head : ∀ c ∈ s.toList.head?, c ≠ '='

structure SpellsMore (s : String) (ws : List Word) : Prop extends Spells Follows s ws where
  follows : ∀ rest, Follows rest → Follows (s.toList ++ rest)

theorem ne_equals_of_follows (h : Follows r) : ∀ c ∈ r.head?, c ≠ '=' := by
  intro c hc
  obtain ⟨cs, rfl⟩ := head?_eq_some_iff.1 hc
  rcases h with hmem | ⟨rfl, _⟩
  · have hmarks : followMarks.all (· != '=') = true := by decide
    exact bne_iff_ne.1 (all_eq_true.1 hmarks c hmem)
  · decide

theorem spellsMore_empty : SpellsMore "" [] := ⟨spells_empty, fun _ hrest => hrest⟩

section

variable {us vs : List Word}

theorem SpellsExpression.append (h : SpellsExpression s us) (h' : SpellsMore t vs) :
    SpellsExpression (s ++ t) (us ++ vs) := by
  constructor
  · exact h.toSpells.append h'.toSpells h'.follows
  · have hfollows : Follows (t.toList ++ []) := h'.follows [] trivial
    have hmore := ne_equals_of_follows hfollows
    rw [append_nil] at hmore
    rw [String.toList_append, head?_append]
    cases hs : s.toList.head? with
    | none => exact hmore
    | some c =>
      intro d hd
      cases hd
      exact h.head c hs

theorem Spells.more (h : Spells Follows s us) (h' : SpellsMore t vs) :
    SpellsMore (", " ++ (s ++ t)) (⟨.comma, ","⟩ :: (us ++ vs)) := by
  constructor
  · exact (spells_spaced ',' (by decide) rfl).andThen (h.append h'.toSpells h'.follows)
  · intro rest _
    rw [String.toList_append]
    exact .inl (by decide)

theorem spells_bracketed (b : Bracket) (h : Spells Follows s ws) :
    SpellsExpression (b.opening.text ++ s ++ b.closing.text) (b.opening :: (ws ++ [b.closing])) := by
  have hwords : b.opening :: (ws ++ [b.closing]) = [b.opening] ++ ws ++ [b.closing] := by simp
  have hopening : Spells Anything b.opening.text [b.opening] := by
    cases b
    · exact spells_symbol '(' (by decide) rfl
    · exact spells_symbol '[' (by decide) rfl
    · exact spells_symbol '\x7b' (by decide) rfl
  have hclosing : Spells Anything b.closing.text [b.closing] := by
    cases b
    · exact spells_symbol ')' (by decide) rfl
    · exact spells_symbol ']' (by decide) rfl
    · exact spells_symbol '\x7d' (by decide) rfl
  constructor
  · rw [hwords]
    refine ((hopening.andThen h).append hclosing fun rest _ => ?_).weaken
    cases b <;> exact .inl (by decide)
  · rw [String.append_assoc, String.toList_append]
    intro c hc
    cases b <;> cases hc <;> decide

theorem spellsMore_bracketed (b : Bracket) (hb : b ≠ .curly) (h : Spells Follows s ws) :
    SpellsMore (b.opening.text ++ s ++ b.closing.text) (b.opening :: (ws ++ [b.closing])) := by
  constructor
  · exact (spells_bracketed b h).toSpells
  · intro rest _
    rw [String.append_assoc, String.toList_append]
    cases b with
    | curly => exact absurd rfl hb
    | round | square => exact .inl (by decide)

theorem spellsMore_member (h : IsName s) : SpellsMore ("." ++ s) [⟨.dot, "."⟩, ⟨.identifier, s⟩] := by
  have hdot : Spells Anything "." [⟨.dot, "."⟩] := ⟨scans_symbol rfl fun _ => rfl, by decide, by decide⟩
  constructor
  · exact hdot.andThen (spells_name h)
  · intro rest _
    rw [String.toList_append]
    refine .inr ⟨rfl, ?_⟩
    have hword := h.1
    cases hs : s.toList with
    | nil => rw [hs] at hword; exact absurd hword id
    | cons c =>
      rw [hs] at hword
      exact ⟨c, rfl, hword.1⟩

theorem spells_argument (hname : ∀ n ∈ name, IsName n) (h : SpellsExpression s ws) :
    Spells Follows (Formula.argumentText name s) (nameWords name ++ ws) := by
  cases name with
  | none => exact h.toSpells
  | some n =>
    have hn := hname n rfl
    have hword : Spells EndsWord n [⟨.identifier, n⟩] := spells_word hn.1 hn.2 (by decide)
    have hassign : Spells (fun r => ∀ d ∈ r.head?, d ≠ '=') "=" [⟨.assign, "="⟩] :=
      ⟨scans_lexeme rfl fun _ hrest => firstLexeme?_assign hrest, by decide, by decide⟩
    refine (hword.append hassign fun rest _ d hd => ?_).append h.toSpells fun rest hrest d hd => ?_
    · cases hd
      decide
    · cases hs : s.toList with
      | nil =>
        rw [hs] at hd
        exact ne_equals_of_follows hrest d hd
      | cons =>
        rw [hs] at hd
        cases hd
        exact h.head d (by rw [hs]; rfl)

theorem spells_entry (hk : SpellsExpression kt us) (hv : SpellsExpression vt vs) :
    SpellsExpression (kt ++ ": " ++ vt) (us ++ ⟨.colon, ":"⟩ :: vs) := by
  rw [String.append_assoc]
  refine hk.append ⟨(spells_spaced ':' (by decide) rfl).andThen hv.toSpells, fun rest _ => ?_⟩
  rw [String.toList_append]
  exact .inl (by decide)

end

theorem guard_full (o : Operator) (f : Formula) : o.guard (f.wholeWords .full) = f.wholeWords .full := by
  have hparsed : Parsed .access f.node (f.wholeWords .full) :=
    parsed_placed .full .access (parsed_words .full f) (Nat.le_refl _)
  refine if_neg fun ⟨_, hnot⟩ => ?_
  obtain ⟨w, hw, hkind⟩ := Option.map_eq_some_iff.1 hnot
  have hstart := hparsed.reads.starts.head w hw
  rw [hkind] at hstart
  exact absurd hstart (by decide)

theorem ne_equals_of_isWord (h : IsWord cs) : ∀ c ∈ cs.head?, c ≠ '=' := by
  intro c hc he
  obtain ⟨r, rfl⟩ := head?_eq_some_iff.1 hc
  rw [he] at h
  exact absurd h.1 (by decide)

theorem spellsExpression_word (h : IsWord s.toList)
    (hkind : TokenKind.ofWord s = kind) (hne : kind ≠ .comment) : SpellsExpression s [⟨kind, s⟩] :=
  ⟨(spells_word h hkind hne).beforeFollows fun _ hrest => hrest.endsWord, ne_equals_of_isWord h⟩

mutual

theorem spells_formula : ∀ f : Formula, f.Writable → SpellsExpression f.emitted (f.wholeWords .full)
  | .name s, h => spellsExpression_word h.1 h.2 (by decide)
  | .number s, h => by
    refine ⟨spells_numeral h, fun c hc he => ?_⟩
    have hdigit := h.isDecimalDigit_head c hc
    rw [he] at hdigit
    exact absurd hdigit (by decide)
  | .text s, h => by
    refine ⟨spells_quoted h, ?_⟩
    rw [Formula.emitted, toList_quoted h]
    intro c hc
    cases hc
    rcases quoteMark_cases s.toList with he | he <;> rw [he] <;> decide
  | .truth true, _ | .truth false, _ | .nothing, _ => spellsExpression_word ⟨rfl, all_eq_true.1 rfl⟩ rfl (by decide)
  | .sign o x, h => by
    have htext : (Formula.sign o x).emitted = "(" ++ (o.word.text ++ " " ++ x.emitted) ++ ")" := by
      simp [Formula.emitted, String.append_assoc]
    rw [htext]
    exact spells_bracketed .round
      (((spells_sign o).append spells_blank fun _ _ => rfl).andThen (spells_formula x h).toSpells)
  | .binary o l r, h => by
    have htext : (Formula.binary o l r).emitted =
        "(" ++ (l.emitted ++ (" " ++ o.text ++ " " ++ r.emitted)) ++ ")" := by
      simp [Formula.emitted, String.append_assoc]
    have hwords : (Formula.binary o l r).wholeWords .full =
        enclosed (l.wholeWords .full ++ (o.words ++ o.guard (r.wholeWords .full))) := by
      cases o <;> rfl
    rw [htext, hwords, guard_full]
    have hright : Spells Follows (" " ++ o.text ++ " " ++ r.emitted) (o.words ++ r.wholeWords .full) := by
      have hop := (spells_blank.andThen (spells_operator o)).append spells_blank fun _ _ => rfl
      rw [nil_append, append_nil] at hop
      exact hop.andThen (spells_formula r h.2).toSpells
    refine spells_bracketed .round ((spells_formula l h.1).append ⟨hright, fun rest _ => ?_⟩).toSpells
    rw [String.append_assoc, String.append_assoc, String.toList_append]
    exact .inl (by decide)
  | .member x s, h => by
    have htext : (Formula.member x s).emitted = x.emitted ++ ("." ++ s) := by
      rw [Formula.emitted, String.append_assoc]
    rw [htext]
    exact (spells_formula x h.1).append (spellsMore_member h.2)
  | .call f args, h => by
    have htext : (Formula.call f args).emitted = f.emitted ++ ("(" ++ Formula.emittedArguments args ++ ")") := by
      simp [Formula.emitted, String.append_assoc]
    rw [htext]
    exact (spells_formula f h.2.1).append (spellsMore_bracketed .round (by decide) (spells_arguments args h.2.2))
  | .index x i, h => by
    have htext : (Formula.index x i).emitted = x.emitted ++ ("[" ++ i.emitted ++ "]") := by
      simp [Formula.emitted, String.append_assoc]
    rw [htext]
    exact (spells_formula x h.1).append (spellsMore_bracketed .square (by decide) (spells_formula i h.2).toSpells)
  | .list items, h => spells_bracketed .square (spells_items items h)
  | .tuple [], _ => spells_bracketed .round spells_empty
  | .tuple [x], h => by
    have hcomma : SpellsMore "," [⟨.comma, ","⟩] :=
      ⟨(spells_symbol ',' (by decide) rfl).weaken, fun rest _ => .inl (by decide)⟩
    have htext : (Formula.tuple [x]).emitted = "(" ++ (x.emitted ++ ",") ++ ")" := by
      simp [Formula.emitted, String.append_assoc]
    rw [htext]
    exact spells_bracketed .round ((spells_formula x h.1).append hcomma).toSpells
  | .tuple (x :: y :: items), h => spells_bracketed .round (spells_items (x :: y :: items) h)
  | .set first rest, h =>
    spells_bracketed .curly ((spells_formula first h.1).append (spells_more rest h.2)).toSpells
  | .dict entries, h => spells_bracketed .curly (spells_entries entries h)

theorem spells_items : ∀ items : List Formula, Formula.AllWritable items →
    Spells Follows (Formula.emittedItems items) (Formula.itemWords .full items)
  | [], _ => spells_empty
  | x :: items, h => ((spells_formula x h.1).append (spells_more items h.2)).toSpells

theorem spells_more : ∀ items : List Formula, Formula.AllWritable items →
    SpellsMore (Formula.emittedMore items) (Formula.moreWords .full items)
  | [], _ => spellsMore_empty
  | x :: items, h => (spells_formula x h.1).toSpells.more (spells_more items h.2)

theorem spells_arguments : ∀ args : List (Option String × Formula), Formula.ArgumentsWritable args →
    Spells Follows (Formula.emittedArguments args) (Formula.argumentWords .full args)
  | [], _ => spells_empty
  | (_, x) :: args, h =>
    (spells_argument h.1 (spells_formula x h.2.1)).append (spells_moreArguments args h.2.2).toSpells
      (spells_moreArguments args h.2.2).follows

theorem spells_moreArguments : ∀ args : List (Option String × Formula), Formula.ArgumentsWritable args →
    SpellsMore (Formula.emittedMoreArguments args) (Formula.moreArgumentWords .full args)
  | [], _ => spellsMore_empty
  | (_, x) :: args, h => (spells_argument h.1 (spells_formula x h.2.1)).more (spells_moreArguments args h.2.2)

theorem spells_entries : ∀ entries : List (Formula × Formula), Formula.EntriesWritable entries →
    Spells Follows (Formula.emittedEntries entries) (Formula.entryWords .full entries)
  | [], _ => spells_empty
  | (k, v) :: entries, h =>
    ((spells_entry (spells_formula k h.1) (spells_formula v h.2.1)).append (spells_moreEntries entries h.2.2)).toSpells

theorem spells_moreEntries : ∀ entries : List (Formula × Formula), Formula.EntriesWritable entries →
    SpellsMore (Formula.emittedMoreEntries entries) (Formula.moreEntryWords .full entries)
  | [], _ => spellsMore_empty
  | (k, v) :: entries, h =>
    (spells_entry (spells_formula k h.1) (spells_formula v h.2.1)).toSpells.more (spells_moreEntries entries h.2.2)

end

/-! ### From text to tree -/

theorem splitLines_of_notMem (h : '\n' ∉ cs) : splitLines cs = [cs] := by
  induction cs with
  | nil => rfl
  | cons c cs ih =>
    have hc : c ≠ '\n' := fun he => h (by rw [he]; exact mem_cons_self ..)
    rw [splitLines, if_neg hc, ih fun hmem => h (mem_cons_of_mem _ hmem)]

/-- A source that is one piece of text has the words as its tokens, then the end of the line and the end mark. -/
theorem tokenize_of_spells (h : Spells fit s ws)
    (hfit : fit []) : ∃ ts newline eof, tokenize s = .ok (ts ++ [newline, eof]) ∧
      ts.map Token.word? = ws.map some ∧ newline.kind = .newline ∧ eof.kind = .eof := by
  obtain ⟨column, hwords, hstuck⟩ := h.scans 0 [] hfit
  have hend : scanLine column [] = ⟨[], none⟩ := by rw [scanLine]
  rw [append_nil, hend] at hwords hstuck
  rw [map_nil, append_nil] at hwords
  -- no lexeme of the line is a comment, so every one becomes a token
  have hkept : (scanLine 0 s.toList).lexemes.filter (fun x => x.kind ≠ .comment) = (scanLine 0 s.toList).lexemes := by
    rw [filter_eq_self]
    intro x hx
    have hword : x.word ∈ ws := hwords ▸ mem_map_of_mem hx
    exact decide_eq_true (h.noComment _ hword)
  refine ⟨(scanLine 0 s.toList).lexemes.map fun x => ⟨x.kind, some x.value, 1, x.column, none⟩,
    ⟨.newline, some "\\\\n", 1, s.toList.length, none⟩, ⟨.eof, none, 1, 0, none⟩, ?_, ?_, rfl, rfl⟩
  · unfold tokenize scan
    rw [splitLines_of_notMem h.oneLine]
    simp only [scanLines, hstuck, lineTokens, hkept]
    simp
  · rw [← hwords, List.map_map, List.map_map]
    rfl

/-- Emitted text is read back: the text of a formula has tokens, and they are read as the tree that was written, up to
the end mark. -/
theorem expression_emitted (f : Formula) (hf : f.Writable) (target : Target) (e : Emitter) (he : e.NoFinals) :
    ∃ ts newline eof, tokenize (Emit.freshText (f.node.emit target) e).1 = .ok (ts ++ [newline, eof]) ∧
      newline.kind = .newline ∧ eof.kind = .eof ∧
      expression? (ts ++ [newline, eof]).toArray 0 = .ok f.node (ts.length + 1 : Nat) := by
  have hspells := spells_formula f hf
  obtain ⟨ts, newline, eof, htokens, hwords, hnewline, heof⟩ := tokenize_of_spells hspells.toSpells trivial
  have htext : (Emit.freshText (f.node.emit target) e).1 = f.emitted := by
    rw [(writes_formula target f hf).freshText e he]
  refine ⟨ts, newline, eof, by rw [htext, htokens], hnewline, heof, ?_⟩
  have hlen : ts.length = (f.wholeWords .full).length := length_of_map_word? hwords
  have hstands := stands_of_map_word? hwords [] [newline, eof]
  have hline : KindAt (ts ++ [newline, eof]).toArray ts.length .newline := hnewline ▸ kindAt_append ts [eof] newline
  have hmark : KindAt (ts ++ [newline, eof]).toArray (ts.length + 1) .eof := by
    have h := kindAt_append (ts ++ [newline]) [] eof
    rw [List.append_assoc, List.length_append, heof] at h
    exact h
  -- the rules for conjunctions and disjunctions look past the end of the line
  have hpast := pastNewline_newline hline
  have hstop : Stops (ts ++ [newline, eof]).toArray .disjunction ts.length (ts.length + 1) :=
    ⟨⟨_, hline, by decide⟩, by rw [hpast]; exact ⟨_, hmark, by decide⟩,
      by rw [hpast, pastNewline_of_kindAt hmark (by decide)], ⟨_, hmark, by decide⟩⟩
  refine (reads_wholeWords .full f).expression hstands ?_ ⟨_, hmark, by decide⟩
  rw [← hlen, Nat.zero_add]
  exact hstop

/-- `f(x, key=-1)["it's"] not in {"k": (b,)} and not [None, True].y ** {2.5}`. -/
theorem expression_emitted_mixed :
    let f : Formula := .binary .and
      (.binary .notInside
        (.index (.call (.name "f") [(none, .name "x"), (some "key", .sign .minus (.number "1"))]) (.text "it's"))
        (.dict [(.text "k", .tuple [.name "b"])]))
      (.sign .negation (.binary .power (.member (.list [.nothing, .truth true]) "y") (.set (.number "2.5") [])))
    f.Writable ∧ ({} : Emitter).NoFinals ∧
      ∃ ts newline eof, tokenize (Emit.freshText (f.node.emit .python) {}).1 = .ok (ts ++ [newline, eof]) ∧
        newline.kind = .newline ∧ eof.kind = .eof ∧
        expression? (ts ++ [newline, eof]).toArray 0 = .ok f.node (ts.length + 1 : Nat) := by
  have hf : IsName "f" := ⟨⟨rfl, List.all_eq_true.1 rfl⟩, rfl⟩
  have hx : IsName "x" := ⟨⟨rfl, List.all_eq_true.1 rfl⟩, rfl⟩
  have hkey : IsName "key" := ⟨⟨rfl, List.all_eq_true.1 rfl⟩, rfl⟩
  have hb : IsName "b" := ⟨⟨rfl, List.all_eq_true.1 rfl⟩, rfl⟩
  have hy : IsName "y" := ⟨⟨rfl, List.all_eq_true.1 rfl⟩, rfl⟩
  have htext : IsPlainText "it's" := ⟨List.all_eq_true.1 rfl, by decide, by decide⟩
  have hk : IsPlainText "k" := ⟨List.all_eq_true.1 rfl, by decide, by decide⟩
  have hargs : Formula.ArgumentsWritable [(none, .name "x"), (some "key", .sign .minus (.number "1"))] :=
    ⟨by simp, hx, by simpa using hkey, rfl, trivial⟩
  intro f
  have hwritable : f.Writable :=
    ⟨⟨⟨⟨rfl, hf, hargs⟩, htext⟩, hk, ⟨hb, trivial⟩, trivial⟩, ⟨⟨trivial, trivial, trivial⟩, hy⟩, rfl, trivial⟩
  have hfinals : ({} : Emitter).NoFinals := fun _ => rfl
  exact ⟨hwritable, hfinals, expression_emitted f hwritable .python {} hfinals⟩

end BraceLang
