import BraceLang.Proofs.LineBreaks
import BraceLang.Proofs.LineText
import BraceLang.Proofs.Spelling

/-!
# Literals that are written and read again

A token of a literal is read as part of an expression or as the default of a parameter, written, and the text is read
once more.
-/

namespace BraceLang

open List Parse

variable {kind : TokenKind} {target : Target} {ws : List Word} {cs v : List Char} {s text : String}

/-- The tokens of the text are the words, then the end of the line and the end mark. -/
def ReadAs (text : String) (ws : List Word) : Prop :=
  ∃ ts newline eof, tokenize text = .ok (ts ++ [newline, eof]) ∧ ts.map Token.word? = ws.map some ∧
    newline.kind = .newline ∧ eof.kind = .eof

def quotedKinds : List TokenKind := [.fstring, .rstring, .frstring, .string]

theorem cutAt_notMem (h : cutAt [mark] cs = some (v, r)) : mark ∉ v := by
  induction cs generalizing v with
  | nil => cases h
  | cons c cs ih =>
    unfold cutAt at h
    split at h
    · cases h
      exact not_mem_nil
    · next hne =>
      obtain ⟨⟨v', r'⟩, h', heq⟩ := Option.map_eq_some_iff.1 h
      cases heq
      rw [mem_cons, not_or]
      refine ⟨?_, ih h'⟩
      rintro rfl
      simp [isPrefixOf?] at hne

theorem Occurs.quoted (h : Occurs cs kind v) (hcs : '\n' ∉ cs) (hkind : kind ∈ quotedKinds) :
    ∃ tag mark triple rest r, (mark = '"' ∨ mark = '\'') ∧ (kind = .fstring → tag = "f") ∧
      rest <:+ cs ∧ LexemeForm.match? (.quotedText tag mark triple) rest = some (v, r) := by
  obtain ⟨line, hline, rest, r, hrest, hfirst⟩ := h
  rw [splitLines_of_notMem hcs, mem_singleton] at hline
  have hword : ∀ kind ∈ quotedKinds, kind ∉ .identifier :: TokenKind.reserved.map Prod.snd := by decide
  have htable : ∀ p ∈ lexemes, p.2 ∈ quotedKinds → ∃ tag ∈ ["f", "r", "fr", "rf", ""], ∃ double triple : Bool,
      p.1 = .quotedText tag (if double then '"' else '\'') triple ∧ (p.2 = .fstring → tag = "f") := by decide
  obtain ⟨form, hform, hmatch⟩ := exists_match?_of_firstLexeme? hfirst (hword kind hkind)
  obtain ⟨tag, -, double, triple, rfl, htag⟩ := htable _ hform hkind
  exact ⟨tag, _, triple, rest, r, by cases double <;> simp, htag, hline ▸ hrest, hmatch⟩

theorem ReadAs.occurs {v : String} (h : ReadAs text ws)
    (hw : ⟨kind, v⟩ ∈ ws) (hkind : kind ∈ quotedKinds) : Occurs text.toList kind v.toList := by
  obtain ⟨ts, newline, eof, htokens, hwords, -⟩ := h
  obtain ⟨t, ht, hword⟩ := mem_map.1 (hwords ▸ mem_map_of_mem hw : some ⟨kind, v⟩ ∈ ts.map Token.word?)
  obtain ⟨s, hs, heq⟩ := Option.map_eq_some_iff.1 hword
  cases heq
  rcases tokenize_occurs htokens t (mem_append_left _ ht) with ⟨hend | hend, -⟩ | ⟨v, hv, hocc⟩
  · exact absurd (hend ▸ hkind) (by decide)
  · exact absurd (hend ▸ hkind) (by decide)
  · cases hs.symm.trans hv
    rwa [String.toList_ofList]

theorem Occurs.count_lt (h : Occurs cs kind v) (hcs : '\n' ∉ cs)
    (hkind : kind ∈ quotedKinds) : ∃ mark, (mark = '"' ∨ mark = '\'') ∧ v.count mark < cs.count mark := by
  obtain ⟨tag, mark, triple, rest, r, hmark, -, hrest, hmatch⟩ := h.quoted hcs hkind
  obtain ⟨text, rfl, rfl⟩ := LexemeForm.match?_denotes hmatch
  have hcount := hrest.sublist.count_le mark
  have hmarks : 1 ≤ (LexemeForm.marks mark triple).count mark := by cases triple <;> simp [LexemeForm.marks]
  simp only [count_append] at hcount
  exact ⟨mark, hmark, by omega⟩

/-! ### Texts with a tag -/

/-- The token alone on a line is an expression, and the text that is written for it is read as the same word. -/
def Token.Survives (target : Target) (t : Token) : Prop :=
  ∃ n text w, (∀ newline eof : Token, newline.kind = .newline → eof.kind = .eof →
    expression #[t, newline, eof] 0 = .ok n 2) ∧ (∀ e, Emit.freshText (n.emit target) e = (text, e)) ∧
    t.word? = some w ∧ ReadAs text [w]

theorem Token.survives_iff {line column : Int} {file : Option String}
    (literal : LiteralKind) (hkind : (kind, literal) ∈ [(.fstring, .fstring), (.frstring, .frstring)])
    (htext : literalPieces (.text s) literal = [text]) :
    (Token.mk kind (some s) line column file).Survives target ↔ ReadAs text [⟨kind, s⟩] := by
  have hparse : ∀ newline eof : Token, newline.kind = .newline → eof.kind = .eof →
      expression #[⟨kind, some s, line, column, file⟩, newline, eof] 0 = .ok (.literal (.text s) literal) 2 := by
    rintro ⟨_, _, _, _, _⟩ ⟨_, _, _, _, _⟩ rfl rfl
    simp only [mem_cons, not_mem_nil, or_false, Prod.mk.injEq] at hkind
    rcases hkind with ⟨rfl, rfl⟩ | ⟨rfl, rfl⟩ <;> rfl
  have hwrite (e : Emitter) : Emit.freshText ((Node.literal (.text s) literal).emit target) e = (text, e) := by
    unfold Node.emit
    rw [htext]
    exact congrArg (·, e) (by simp [String.join] : String.join [text] = text)
  refine ⟨?_, fun h => ⟨_, text, _, hparse, hwrite, rfl, h⟩⟩
  rintro ⟨n, text', w, hparse', hwrite', hw, h⟩
  have hline := hparse' ⟨.newline, none, 0, 0, none⟩ ⟨.eof, none, 0, 0, none⟩ rfl rfl
  cases (hparse _ _ rfl rfl).symm.trans hline
  cases (hwrite {}).symm.trans (hwrite' {})
  cases hw
  exact h

theorem length_unquoted (s : String) : (unquoted s).toList.length ≤ s.toList.length := by
  unfold unquoted
  dsimp only
  split
  · simp
    omega
  · exact Nat.le_refl _

theorem Occurs.tagged (h : Occurs ("f\"" ++ unquoted s ++ "\"").toList .fstring s.toList)
    (hs : '\n' ∉ (unquoted s).toList) : '"' ∉ s.toList ∧ unquoted s = s := by
  have htext : ("f\"" ++ unquoted s ++ "\"").toList = 'f' :: '"' :: ((unquoted s).toList ++ ['"']) := by simp
  rw [htext] at h
  obtain ⟨tag, mark, triple, rest, r, -, htag, hrest, hmatch⟩ := h.quoted (by simp [hs]) (by decide)
  obtain rfl := htag rfl
  obtain ⟨text, rfl, rfl⟩ := LexemeForm.match?_denotes hmatch
  have hlen := hrest.length_le
  have hle := length_unquoted s
  cases triple with
  | true =>
    simp [LexemeForm.marks] at hlen
    omega
  | false =>
    simp [LexemeForm.marks] at hlen
    -- the lexeme is as long as the whole text
    obtain rfl : r = [] := length_eq_zero_iff.1 (by omega)
    have heq := hrest.eq_of_length (by simp [LexemeForm.marks]; omega)
    obtain ⟨rfl, heq⟩ : mark = '"' ∧ s.toList ++ [mark] = (unquoted s).toList ++ ['"'] := by
      simpa [LexemeForm.marks] using heq
    have hcut : cutAt ['"'] (s.toList ++ ['"']) = some (s.toList, []) := by
      simpa [LexemeForm.match?, LexemeForm.marks, isPrefixOf?] using hmatch
    exact ⟨cutAt_notMem hcut, String.toList_inj.1 (append_cancel_right heq).symm⟩

/-- A text with a tag survives only as a formatted text, and only if its value has no double quote and is not in quotes
itself: a raw text is no expression, and a formatted raw text is written without its tag and its quotes. -/
theorem tagged_text_survives_iff {source : String} {tokens : List Token} {t : Token} (h : tokenize source = .ok tokens)
    (ht : t ∈ tokens) (hkind : t.kind ∈ [.fstring, .rstring, .frstring]) (target : Target) :
    t.Survives target ↔ t.kind = .fstring ∧ '"' ∉ t.text.toList ∧ unquoted t.text = t.text := by
  have hline := (tokenize_tidy h t ht).oneLine
  obtain ⟨kind, value, line, column, file⟩ := t
  obtain ⟨s, rfl⟩ : ∃ s, value = some s := by
    rcases tokenize_occurs h _ ht with ⟨hend | hend, -⟩ | ⟨v, hv, -⟩
    · exact absurd (hend ▸ hkind) (by decide)
    · exact absurd (hend ▸ hkind) (by decide)
    · exact ⟨_, hv⟩
  simp only [mem_cons, not_mem_nil, or_false] at hkind
  rcases hkind with rfl | rfl | rfl
  · rw [Token.survives_iff .fstring (by decide) rfl]
    constructor
    · intro hread
      have hocc := hread.occurs (mem_singleton_self _) (by decide)
      exact ⟨rfl, hocc.tagged (oneLine_unquoted hline)⟩
    · rintro ⟨-, hquote, hsame⟩
      have hspells : Word.Spelled ⟨.fstring, s⟩ ("f" ++ "\"" ++ s ++ "\"") := .quoted (by decide) fun c hc =>
        ⟨fun he => hline (he ▸ hc), fun he => hquote (he ▸ hc)⟩
      rw [show unquoted (Scalar.text s).display = s from hsame]
      exact tokenize_of_spells hspells.spells (by simp [Parted])
  · refine ⟨fun hsurvives => ?_, fun h => by cases h.1⟩
    obtain ⟨n, text, w, hparse, -⟩ := hsurvives
    cases hparse ⟨.newline, none, 0, 0, none⟩ ⟨.eof, none, 0, 0, none⟩ rfl rfl
  · rw [Token.survives_iff .frstring (by decide) rfl]
    refine ⟨fun hread => ?_, fun h => by cases h.1⟩
    have hocc := hread.occurs (mem_singleton_self _) (by decide)
    obtain ⟨mark, -, hlt⟩ := hocc.count_lt hline (by decide)
    exact absurd hlt (Nat.lt_irrefl _)

theorem tagged_text_survives_iff_formatted :
    (Token.mk .fstring (some "a") 1 0 none).Survives .python := by
  have h : tokenize "f\"a\"" = .ok [⟨.fstring, some "a", 1, 0, none⟩, ⟨.newline, some "\\\\n", 1, 4, none⟩,
    ⟨.eof, none, 1, 0, none⟩] := by decide +kernel
  exact (tagged_text_survives_iff h mem_cons_self (by decide) .python).2 ⟨rfl, by decide, by decide +kernel⟩

/-- `fr"a"` is written as `a`. -/
theorem exists_tagged_text_lost : ∃ tokens, tokenize "fr\"a\"" = .ok tokens ∧
    ∃ t ∈ tokens, t.kind = .frstring ∧ ∀ target, ¬t.Survives target := by
  refine ⟨[⟨.frstring, some "a", 1, 0, none⟩, ⟨.newline, some "\\\\n", 1, 5, none⟩, ⟨.eof, none, 1, 0, none⟩],
    by decide +kernel, _, mem_cons_self, rfl, fun target hsurvives => ?_⟩
  have hread := (Token.survives_iff .frstring (by decide) rfl).1 hsurvives
  obtain ⟨mark, -, hlt⟩ := (hread.occurs (mem_singleton_self _) (by decide)).count_lt (by decide) (by decide)
  exact absurd hlt (Nat.lt_irrefl _)

/-! ### Defaults of parameters -/

section

variable {source s : String} {tokens : List Token} {i : Nat} {rest : List Word} {head : String} {types : List String}

theorem occurs_of_stands (h : tokenize source = .ok tokens) (hs : Stands tokens.toArray i (⟨kind, s⟩ :: rest))
    (hkind : kind ≠ .newline ∧ kind ≠ .eof) : '\n' ∉ s.toList ∧ Occurs source.toList kind s.toList := by
  obtain ⟨⟨t, ht, rfl, hv⟩, _⟩ := hs
  have hmem : t ∈ tokens := mem_of_getElem? (by simpa using ht : tokens[i]? = some t)
  have hline := (tokenize_tidy h t hmem).oneLine
  rw [Token.text, hv] at hline
  rcases tokenize_occurs h t hmem with ⟨hend | hend, -⟩ | ⟨v, hv', hocc⟩
  · exact absurd hend hkind.1
  · exact absurd hend hkind.2
  · obtain rfl : s = String.ofList v := Option.some.inj (hv.symm.trans hv')
    exact ⟨hline, by rwa [String.toList_ofList]⟩

theorem isWord_of_stands (h : tokenize source = .ok tokens) (hs : Stands tokens.toArray i (⟨kind, s⟩ :: rest))
    (hkind : kind ∈ .identifier :: TokenKind.reserved.map Prod.snd) : IsWord s.toList ∧ TokenKind.ofWord s = kind := by
  have hne : ∀ kind ∈ .identifier :: TokenKind.reserved.map Prod.snd, kind ≠ .newline ∧ kind ≠ .eof := by decide
  obtain ⟨-, line, _, _, _, _, hfirst⟩ := occurs_of_stands h hs (hne _ hkind)
  simpa using isWord_of_firstLexeme? hfirst hkind

theorem isWord_typeName (h : IsWord s.toList) : IsWord (target.typeName types s).toList := by
  unfold Target.typeName Target.compiledType
  split_ifs
  · decide
  · cases hlookup : Target.compiledTypes.lookup (Target.baseType s) with
    | none => exact h
    | some t =>
      obtain ⟨before, after, hsplit, -⟩ := lookup_eq_some_iff.1 hlookup
      exact (by decide : ∀ p ∈ Target.compiledTypes, IsWord p.2.toList) (Target.baseType s, t)
        (by rw [hsplit]; simp)
  · exact h

theorem spells_isWord (h : IsWord s.toList) : Spells EndsWord s [⟨TokenKind.ofWord s, s⟩] :=
  spells_word h rfl fun he => absurd (he ▸ ofWord_mem s) (by decide)

theorem exists_spells_head (hname : IsWord s.toList)
    (htype : ∀ t ∈ type, IsWord t.toList) : ∃ head us, Spells EndsWord head us ∧
      (∀ c, (c = '"' ∨ c = '\'') → c ∉ head.toList) ∧
      ∀ v, (Node.parameter s type (.text v) []).parameterText target types =
        head ++ if v = "" then "" else " = " ++ v := by
  have hquote : ∀ c, (c = '"' ∨ c = '\'') → isWordChar c = false ∧ c ∉ ": ".toList := by
    rintro c (rfl | rfl) <;> decide
  cases type with
  | none =>
    refine ⟨s, _, spells_isWord hname, fun c hc => hname.notMem (hquote c hc).1, fun v => ?_⟩
    simp [Node.parameterText, isGiven, Scalar.isTrue, Scalar.display]
  | some t =>
    have hword : IsWord (target.typeName types t).toList := isWord_typeName (htype t rfl)
    have hcolon : Spells (fun _ => True) ": " [⟨.colon, ":"⟩] :=
      ⟨(scans_symbol rfl fun _ => rfl : Scans (fun _ => True) [':'] _).append (scans_blank rfl) fun _ _ => trivial,
        by decide, by decide⟩
    have hlast := hcolon.append (spells_isWord hword) fun _ _ => trivial
    refine ⟨s ++ (": " ++ target.typeName types t), _, (spells_isWord hname).append hlast fun rest _ => ?_, ?_, ?_⟩
    · intro d hd
      obtain rfl : ':' = d := by simpa using hd
      decide
    · intro c hc
      simp only [String.toList_append, mem_append, not_or]
      exact ⟨hname.notMem (hquote c hc).1, (hquote c hc).2, hword.notMem (hquote c hc).1⟩
    · have hne : t ≠ "" := by
        rintro rfl
        exact htype _ rfl
      intro v
      simp [Node.parameterText, isGiven, hne, String.append_assoc, Scalar.isTrue, Scalar.display]

theorem spells_plain (h : tokenize source = .ok tokens) (hs : Stands tokens.toArray i (⟨kind, s⟩ :: rest))
    (hkind : kind ∈ [.number, .trueKw, .falseKw, .noneKw]) : s ≠ "" ∧ Spells Parted s [⟨kind, s⟩] := by
  by_cases hnumber : kind = .number
  · subst hnumber
    obtain ⟨-, line, _, _, _, _, hfirst⟩ := occurs_of_stands h hs (by decide)
    obtain ⟨fraction, exponent, hnumber⟩ := isNumber_of_firstLexeme? hfirst
    obtain ⟨c, cs, hcons, -⟩ := hnumber.exists_cons
    exact ⟨fun he => by simp [he] at hcons, (Word.Spelled.number fraction exponent hnumber).spells⟩
  · have hreserved : ∀ kind ∈ [.number, .trueKw, .falseKw, .noneKw], kind ≠ .number →
        kind ∈ .identifier :: TokenKind.reserved.map Prod.snd := by decide
    obtain ⟨hword, rfl⟩ := isWord_of_stands h hs (hreserved _ hkind hnumber)
    have hspells := spells_isWord hword
    exact ⟨fun he => by simp [he] at hword; exact hword, hspells.scans.mono fun _ => Parted.endsWord, hspells.oneLine,
      hspells.noComment⟩

theorem readAs_default (hhead : Spells EndsWord head us)
    (hspells : Spells Parted s [w]) : ReadAs (head ++ (" = " ++ s)) (us ++ [⟨.assign, "="⟩, w]) := by
  have hsign : Scans BeforeBlank ['='] [⟨.assign, "="⟩] := scans_beforeBlank rfl fun _ => rfl
  have hassign : Spells (fun _ => True) " = " [⟨.assign, "="⟩] :=
    ⟨((scans_blank rfl : Scans (fun _ => True) [' '] []).append hsign fun _ _ => trivial).append (scans_blank rfl)
      fun _ _ => rfl, by decide, by decide⟩
  have hwhole := hhead.append (hassign.append hspells fun _ _ => trivial) fun rest _ d hd => by
    obtain rfl : ' ' = d := by simpa using hd
    decide
  exact tokenize_of_spells hwhole (by simp [Parted])

theorem not_readAs_bare (hhead : '\n' ∉ head.toList) (hquotes : ∀ c, (c = '"' ∨ c = '\'') → c ∉ head.toList)
    (hs : '\n' ∉ s.toList) (hw : ⟨.string, s⟩ ∈ ws) : ¬ReadAs (head ++ if s = "" then "" else " = " ++ s) ws := by
  intro hread
  have hcount : ∀ c, c ≠ ' ' → c ≠ '=' → (if s = "" then "" else " = " ++ s).toList.count c = s.toList.count c := by
    intro c hblank hsign
    split_ifs with he
    · rw [he]
    · simp [String.toList_append, hblank.symm, hsign.symm]
  have hline := count_eq_zero.1 ((hcount '\n' (by decide) (by decide)).trans (count_eq_zero.2 hs))
  obtain ⟨mark, hmark, hlt⟩ := (hread.occurs hw (by decide)).count_lt (by simp [hhead, hline]) (by decide)
  have hne : mark ≠ ' ' ∧ mark ≠ '=' := by rcases hmark with rfl | rfl <;> decide
  rw [String.toList_append, count_append, count_eq_zero.2 (hquotes mark hmark), hcount mark hne.1 hne.2] at hlt
  omega

end

/-- A parameter whose default is a literal is read, and the text that is written for it ends in the sign and the same
literal exactly if the literal is no text. -/
theorem parameter_default_survives_iff {source : String} {tokens : List Token} (h : tokenize source = .ok tokens)
    {p : WrittenParameter} {w : Word} {i : Nat} (hp : p.Valid) (hs : Stands tokens.toArray i p.words)
    (hw : p.default = some w) (hkind : w.kind ∈ [.number, .string, .trueKw, .falseKw, .noneKw]) (target : Target)
    (types : List String) : ∃ n, parameter tokens.toArray i = .ok n (i + p.words.length : Nat) ∧
      ((∃ us, ReadAs (n.parameterText target types) (us ++ [⟨.assign, "="⟩, w])) ↔ w.kind ≠ .string) := by
  refine ⟨p.node, parameter_ok hp hs fun hnone => by simp [hw] at hnone, ?_⟩
  obtain ⟨name, type, default⟩ := p
  obtain ⟨kind, v⟩ := w
  obtain rfl : default = some ⟨kind, v⟩ := hw
  obtain ⟨htypes, hdefault⟩ := stands_append.1 hs.2
  have hname := (isWord_of_stands h hs mem_cons_self).1
  have htype : ∀ t ∈ type.map Word.text, IsWord t.toList := by
    intro t ht
    obtain ⟨⟨k, t⟩, rfl, rfl⟩ := Option.map_eq_some_iff.1 ht
    have hkinds : ∀ k ∈ [.identifier, .noneKw], k ∈ .identifier :: TokenKind.reserved.map Prod.snd := by decide
    exact (isWord_of_stands h htypes.2 (hkinds k (hp.type _ rfl))).1
  obtain ⟨head, us, hhead, hquotes, htext⟩ := exists_spells_head hname htype
  rw [show (WrittenParameter.node ⟨name, type, some ⟨kind, v⟩⟩).parameterText target types = _ from htext v]
  constructor
  · rintro ⟨us, hread⟩ rfl
    obtain ⟨hline, -⟩ := occurs_of_stands h hdefault.2 (by simp)
    exact not_readAs_bare hhead.oneLine hquotes hline (by simp) hread
  · intro hne
    obtain ⟨hv, hspells⟩ := spells_plain h hdefault.2 (by simp_all)
    rw [if_neg hv]
    exact ⟨us, readAs_default hhead hspells⟩

theorem parameter_default_survives_iff_number :
    let tokens : List Token := [⟨.identifier, some "n", 1, 0, none⟩, ⟨.colon, some ":", 1, 1, none⟩,
      ⟨.identifier, some "int", 1, 3, none⟩, ⟨.assign, some "=", 1, 7, none⟩, ⟨.number, some "1", 1, 9, none⟩,
      ⟨.newline, some "\\\\n", 1, 10, none⟩, ⟨.eof, none, 1, 0, none⟩]
    ∃ n us, parameter tokens.toArray 0 = .ok n 5 ∧
      ReadAs (n.parameterText .python []) (us ++ [⟨.assign, "="⟩, ⟨.number, "1"⟩]) := by
  intro tokens
  have h : tokenize "n: int = 1" = .ok tokens := by decide +kernel
  obtain ⟨n, hread, hsurvives⟩ := parameter_default_survives_iff h
    (p := ⟨"n", some ⟨.identifier, "int"⟩, some ⟨.number, "1"⟩⟩)
    (i := 0) ⟨by simp, by simp⟩ (by simp [WrittenParameter.words, Stands, tokens]) rfl (by decide) .python []
  obtain ⟨us, hus⟩ := hsurvives.2 (by decide)
  exact ⟨n, us, hread, hus⟩

/-- The default of `a = "x"` is written without its quotes. -/
theorem exists_parameter_default_lost : ∃ tokens n, tokenize "a = \"x\"" = .ok tokens ∧
    Stands tokens.toArray 0 [⟨.identifier, "a"⟩, ⟨.assign, "="⟩, ⟨.string, "x"⟩] ∧
    parameter tokens.toArray 0 = .ok n 3 ∧
    ∀ us, ¬ReadAs (n.parameterText .python []) (us ++ [⟨.assign, "="⟩, ⟨.string, "x"⟩]) := by
  refine ⟨[⟨.identifier, some "a", 1, 0, none⟩, ⟨.assign, some "=", 1, 2, none⟩, ⟨.string, some "x", 1, 4, none⟩,
    ⟨.newline, some "\\\\n", 1, 7, none⟩, ⟨.eof, none, 1, 0, none⟩], .parameter "a" none (.text "x") [],
    by decide +kernel, by simp [Stands], rfl, fun us => ?_⟩
  rw [show (Node.parameter "a" none (.text "x") []).parameterText .python [] =
    "a" ++ if "x" = "" then "" else " = " ++ "x" by decide +kernel]
  exact not_readAs_bare (by decide) (by rintro c (rfl | rfl) <;> decide) (by decide) (by simp)

end BraceLang
