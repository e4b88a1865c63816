import BraceLang.Proofs.EmissionRoundTrip

/-!
# Reading what was spelled

A word has a spelling: a reserved word, a symbol, a name and a number are spelled as they are, a text stands behind
its tag between double quotes.
-/

namespace BraceLang

variable {r : List Char} {s : String}

inductive Word.Spelled : Word → String → Prop
  | reserved {s : String} {kind : TokenKind} (h : (s, kind) ∈ TokenKind.reserved) : Spelled ⟨kind, s⟩ s
  | symbol {s : String} {kind : TokenKind} (h : (.spelling s, kind) ∈ lexemes) : Spelled ⟨kind, s⟩ s
  | name {s : String} (h : IsWord s.toList) (hfree : s ∉ TokenKind.reserved.map Prod.fst) :
      Spelled ⟨.identifier, s⟩ s
  | number {s : String} (fraction exponent : Bool) (h : IsNumber fraction exponent s.toList) : Spelled ⟨.number, s⟩ s
  | quoted {tag s : String} {kind : TokenKind} (h : (.quotedText tag '"' false, kind) ∈ lexemes)
      (hs : ∀ c ∈ s.toList, c ≠ '\n' ∧ c ≠ '"') : Spelled ⟨kind, s⟩ (tag ++ "\"" ++ s ++ "\"")

def Parted (r : List Char) : Prop := ∀ c ∈ r.head?, c = ' '

theorem Parted.endsWord (h : Parted r) : EndsWord r := by
  intro c hc
  obtain rfl := h c hc
  decide

theorem Parted.endsNumber (h : Parted r) : EndsNumber r := by
  cases r with
  | nil => exact ⟨rfl, rfl, by simp⟩
  | cons c =>
    obtain rfl := h c rfl
    exact ⟨rfl, rfl, by simp⟩

theorem ofWord_of_mem (h : (s, kind) ∈ TokenKind.reserved) : IsWord s.toList ∧ TokenKind.ofWord s = kind :=
  (by decide : ∀ p ∈ TokenKind.reserved, IsWord p.1.toList ∧ TokenKind.ofWord p.1 = p.2) _ h

theorem ofWord_of_notMem (h : s ∉ TokenKind.reserved.map Prod.fst) : TokenKind.ofWord s = .identifier := by
  rw [TokenKind.ofWord, List.lookup_eq_none_iff.2, Option.getD_none]
  rintro ⟨t, kind⟩ hp
  rw [bne_iff_ne]
  rintro rfl
  exact h (List.mem_map_of_mem hp)

theorem plain_of_mem (h : p ∈ lexemes) (hne : p.1 ≠ .comment) : '\n' ∉ p.1.opening ∧ p.2 ≠ .comment :=
  (by decide : ∀ p ∈ lexemes, p.1 ≠ .comment → '\n' ∉ p.1.opening ∧ p.2 ≠ .comment) p h hne

theorem Word.Spelled.spells (h : w.Spelled s) : Spells Parted s [w] := by
  cases h with
  | reserved h =>
    obtain ⟨hword, hkind⟩ := ofWord_of_mem h
    have hne := (by decide : ∀ p ∈ TokenKind.reserved, p.2 ≠ .comment) _ h
    have hspells := spells_word hword hkind hne
    exact ⟨hspells.scans.mono fun _ => Parted.endsWord, hspells.oneLine, hspells.noComment⟩
  | symbol h =>
    obtain ⟨hline, hkind⟩ := plain_of_mem h (by simp)
    exact ⟨scans_spelling h, hline, by simpa using hkind⟩
  | name h hfree =>
    have hspells := spells_word h (ofWord_of_notMem hfree) (by decide)
    exact ⟨hspells.scans.mono fun _ => Parted.endsWord, hspells.oneLine, hspells.noComment⟩
  | number fraction exponent h =>
    exact ⟨(scans_number h).mono fun _ => Parted.endsNumber, h.newline_notMem, by simp⟩
  | @quoted tag s kind h hs =>
    obtain ⟨hline, hkind⟩ := plain_of_mem h (by simp)
    have htext : (tag ++ "\"" ++ s ++ "\"").toList = tag.toList ++ '"' :: (s.toList ++ ['"']) := by simp
    refine ⟨?_, ?_, by simpa using hkind⟩
    · rw [htext]
      refine (scans_quoted h fun hmem => (hs _ hmem).2 rfl).mono fun r hr c hc => ?_
      obtain rfl := hr c hc
      decide
    · have hs : '\n' ∉ s.toList := fun hmem => (hs _ hmem).1 rfl
      simp_all [LexemeForm.opening, LexemeForm.marks]

/-- Lexing undoes spelling. -/
theorem tokenize_spelled {ws : List Word} {texts : List String} (h : List.Forall₂ Word.Spelled ws texts) :
    ∃ ts newline eof, tokenize (" ".intercalate texts) = .ok (ts ++ [newline, eof]) ∧ ts.map Token.word? = ws.map some ∧
      newline.kind = .newline ∧ eof.kind = .eof := by
  have hspells : Spells Parted (" ".intercalate texts) ws := by
    induction h with
    | nil => exact spells_empty
    | cons hw hws ih =>
      cases hws with
      | nil =>
        rw [String.intercalate_singleton]
        exact hw.spells
      | cons =>
        rw [String.intercalate_cons_cons]
        have hblank : Spells (fun _ => True) " " [] := ⟨scans_blank rfl, by decide, by simp⟩
        have hfirst := hw.spells.append hblank fun rest _ => by simp [Parted]
        exact hfirst.append ih fun _ _ => trivial
  exact tokenize_of_spells hspells (by simp [Parted])

/-- `def r >= _9 1.5E-3 rf"it's # r'" @! ""`. -/
theorem tokenize_spelled_mixed :
    let ws : List Word := [⟨.defKw, "def"⟩, ⟨.identifier, "r"⟩, ⟨.greaterEqual, ">="⟩, ⟨.identifier, "_9"⟩,
      ⟨.number, "1.5E-3"⟩, ⟨.frstring, "it's # r'"⟩, ⟨.atBang, "@!"⟩, ⟨.string, ""⟩]
    let texts := ["def", "r", ">=", "_9", "1.5E-3", "rf\"it's # r'\"", "@!", "\"\""]
    List.Forall₂ Word.Spelled ws texts ∧
      ∃ ts newline eof, tokenize (" ".intercalate texts) = .ok (ts ++ [newline, eof]) ∧
        ts.map Token.word? = ws.map some ∧ newline.kind = .newline ∧ eof.kind = .eof := by
  intro ws texts
  have hnumber : IsNumber true true "1.5E-3".toList :=
    ⟨['1'], ".5".toList, "E-3".toList, by decide, ⟨['5'], by decide, rfl⟩,
      ⟨'E', ['-'], ['3'], by decide, by decide, by decide, rfl⟩, rfl⟩
  have h : List.Forall₂ Word.Spelled ws texts :=
    .cons (.reserved (by decide)) <| .cons (.name (by decide) (by decide)) <| .cons (.symbol (by decide)) <|
    .cons (.name (by decide) (by decide)) <| .cons (.number true true hnumber) <|
    .cons (.quoted (s := "it's # r'") (by decide : (.quotedText "rf" '"' false, .frstring) ∈ lexemes) (by simp)) <|
    .cons (.symbol (by decide)) <|
    .cons (.quoted (s := "") (by decide : (.quotedText "" '"' false, .string) ∈ lexemes) (by simp)) .nil
  exact ⟨h, tokenize_spelled h⟩

end BraceLang
