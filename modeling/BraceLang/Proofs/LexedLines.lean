import BraceLang.Proofs.Lexing

/-!
# Tokens in their lines

The tokens of a source are laid out in it: a line is a row of blanks and lexemes, each lexeme has a token that tells
its line and its column, and only a comment has none.
-/

namespace BraceLang

open List

/-- The tokens lie in what is left of a line from the column on: behind blanks each token has a lexeme, which starts at
the column of the token, and a comment may take the rest. -/
inductive Laid (line : Nat) : Nat → List Char → List Token → Prop
  | done : Laid line column [] []
  | blank (hc : isBlank c) (h : Laid line (column + 1) cs ts) : Laid line column (c :: cs) ts
  | comment : Laid line column ('#' :: cs) []
  | token (hform : (form, k) ∈ lexemes) (hk : k ≠ .comment)
      (hkind : (if k = .identifier then TokenKind.ofWord (String.ofList v) else k) = kind) (htext : form.Denotes v text)
      (h : Laid line (column + text.length) rest ts) :
      Laid line column (text ++ rest) (⟨kind, some (String.ofList v), line, column, none⟩ :: ts)

/-- The block of tokens of a line: those that lie in it, from left to right, and the mark of its end. -/
def IsBlock (line : Nat) (cs : List Char) (block : List Token) : Prop :=
  ∃ ts, block = ts ++ [⟨.newline, some "\\\\n", line, cs.length, none⟩] ∧ Laid line 0 cs ts ∧
    (∀ t ∈ ts, t.line = line ∧ t.kind ≠ .newline ∧ t.kind ≠ .eof) ∧ ts.Pairwise fun t u => t.column < u.column

/-! ### One line -/

theorem kind_of_lexemes (hform : (form, k) ∈ lexemes)
    (hkind : (if k = .identifier then TokenKind.ofWord (String.ofList v) else k) = kind) :
    kind ≠ .newline ∧ kind ≠ .eof ∧ (kind = .comment → k = .comment) := by
  subst hkind
  split
  · have htable : ∀ k ∈ .identifier :: TokenKind.reserved.map Prod.snd, k ≠ .newline ∧ k ≠ .eof ∧ k ≠ .comment := by
      decide
    obtain ⟨hnewline, heof, hcomment⟩ := htable _ (ofWord_mem (String.ofList v))
    exact ⟨hnewline, heof, fun h => absurd h hcomment⟩
  · obtain ⟨hnewline, heof⟩ := (by decide : ∀ p ∈ lexemes, p.2 ≠ .newline ∧ p.2 ≠ .eof) _ hform
    exact ⟨hnewline, heof, id⟩

theorem firstLexeme?_comment (h : firstLexeme? cs = some (.comment, v, r)) :
    r = [] ∧ ∃ cs', cs = '#' :: cs' := by
  obtain ⟨form, k, text, hform, hkind, htext, rfl⟩ := firstLexeme?_denotes h
  obtain rfl : form = .comment := (by decide : ∀ p ∈ lexemes, p.2 = .comment → p.1 = .comment) _ hform
    ((kind_of_lexemes hform hkind).2.2 rfl)
  obtain ⟨rfl, cs, rfl⟩ := htext
  have hrest : [] = r := congrArg (fun x => x.2.2) (Option.some.inj h)
  exact ⟨hrest.symm, _, rfl⟩

def lexemeTokens (line : Nat) (xs : List Lexeme) : List Token :=
  (xs.filter fun x => x.kind ≠ .comment).map fun x => ⟨x.kind, some x.value, line, x.column, none⟩

theorem laid_scanLine (line column : Nat) (cs : List Char) (h : (scanLine column cs).stuck = none) :
    Laid line column cs (lexemeTokens line (scanLine column cs).lexemes) := by
  fun_induction scanLine column cs with
  | case1 => exact .done
  | case2 column c rest hc ih => exact .blank hc (ih h)
  | case3 => cases h
  | case4 column c rest hc kind v r hfirst _ tail ih =>
    by_cases hcomment : kind = .comment
    · subst hcomment
      obtain ⟨rfl, cs, hcs⟩ := firstLexeme?_comment hfirst
      have htail : tail = ⟨[], none⟩ := by unfold tail; rw [scanLine]
      rw [hcs, htail]
      exact .comment
    · obtain ⟨form, k, text, hform, hkind, htext, hcs⟩ := firstLexeme?_denotes hfirst
      have hwidth : column + ((c :: rest).length - r.length) = column + text.length := by
        rw [hcs, length_append, Nat.add_sub_cancel]
      have hk : k ≠ .comment := by
        rintro rfl
        exact hcomment hkind.symm
      have hkept : lexemeTokens line (⟨kind, String.ofList v, column⟩ :: tail.lexemes) =
          ⟨kind, some (String.ofList v), line, column, none⟩ :: lexemeTokens line tail.lexemes := by
        simp [lexemeTokens, hcomment]
      rw [hkept, hcs]
      exact .token hform hk hkind htext (hwidth ▸ ih h)

section

variable {line column : Nat} {cs : List Char} {ts : List Token}

theorem Laid.placed (h : Laid line column cs ts) :
    ∀ t ∈ ts, (t.line = line ∧ t.kind ≠ .newline ∧ t.kind ≠ .eof) ∧ column ≤ t.column := by
  induction h with
  | done | comment => simp
  | blank _ _ ih => exact fun t ht => ⟨(ih t ht).1, by have := (ih t ht).2; omega⟩
  | token hform _ hkind _ _ ih =>
    refine forall_mem_cons.2 ⟨⟨⟨rfl, ?_⟩, Int.le_refl _⟩, fun t ht => ⟨(ih t ht).1, ?_⟩⟩
    · obtain ⟨hnewline, heof, _⟩ := kind_of_lexemes hform hkind
      exact ⟨hnewline, heof⟩
    · have := (ih t ht).2
      omega

theorem Laid.increasing (h : Laid line column cs ts) : ts.Pairwise fun t u => t.column < u.column := by
  induction h with
  | done | comment => exact .nil
  | blank _ _ ih => exact ih
  | token _ _ _ htext h ih =>
    refine pairwise_cons.2 ⟨fun t ht => ?_, ih⟩
    have hbehind := (h.placed t ht).2
    have hpos := length_pos_iff.2 htext.ne_nil
    dsimp only
    omega

end

theorem isBlock_lineTokens (line : Nat) (h : (scanLine 0 cs).stuck = none) :
    IsBlock line cs (lineTokens line cs.length (scanLine 0 cs).lexemes) := by
  have hlaid := laid_scanLine line 0 cs h
  exact ⟨_, rfl, hlaid, fun t ht => (hlaid.placed t ht).1, hlaid.increasing⟩

/-! ### All lines -/

theorem splitLines_eq_splitOn (cs : List Char) : splitLines cs = cs.splitOn '\n' := by
  induction cs with
  | nil => rfl
  | cons c cs ih =>
    rw [splitLines, splitOn_cons_eq_if_modifyHead, ih]
    by_cases hc : c = '\n'
    · simp [hc]
    · obtain ⟨l, ls, hls⟩ := exists_cons_of_ne_nil (splitOn_ne_nil '\n' cs)
      simp [hc, hls]

theorem blocks_scanLines (line : Nat) (last : LastKinds) (lines : List (List Char))
    (h : (scanLines line last lines).error = none) :
    ∃ blocks : List (List Token), (scanLines line last lines).tokens =
        blocks.flatten ++ [⟨.eof, none, (line + lines.length : Nat) - 1, 0, none⟩] ∧
      blocks.length = lines.length ∧
      ∀ i cs block, lines[i]? = some cs → blocks[i]? = some block → IsBlock (line + i) cs block := by
  induction lines generalizing line last with
  | nil => exact ⟨[], rfl, rfl, by simp⟩
  | cons cs lines ih =>
    unfold scanLines at h ⊢
    dsimp only at h ⊢
    split at h
    · cases h
    · next hstuck =>
      obtain ⟨blocks, htokens, hlength, hblocks⟩ := ih _ _ h
      refine ⟨lineTokens line cs.length (scanLine 0 cs).lexemes :: blocks, ?_, by simp [hlength], ?_⟩
      · have hline : line + 1 + lines.length = line + (cs :: lines).length := by rw [length_cons]; omega
        rw [htokens, hline, flatten_cons, List.append_assoc]
      · intro i cs' block hcs hblock
        cases i with
        | zero => cases hcs; cases hblock; exact isBlock_lineTokens line hstuck
        | succ i =>
          have hnext := hblocks i cs' block hcs hblock
          rwa [Nat.add_right_comm] at hnext

/-- Tokens cover their source.  There is one block for each line, then the mark of the end. -/
theorem tokenize_blocks {source : String} {tokens : List Token} (h : tokenize source = .ok tokens) :
    ∃ blocks : List (List Token), tokens = blocks.flatten ++
      [⟨.eof, none, (source.toList.splitOn '\n').length, 0, none⟩] ∧
      blocks.length = (source.toList.splitOn '\n').length ∧
      ∀ i cs block, (source.toList.splitOn '\n')[i]? = some cs → blocks[i]? = some block →
        IsBlock (i + 1) cs block := by
  unfold tokenize at h
  dsimp only at h
  split at h
  · cases h
  · next herror =>
    cases h
    obtain ⟨blocks, htokens, hlength, hblocks⟩ := blocks_scanLines 1 ⟨none, none⟩ _ herror
    rw [splitLines_eq_splitOn] at htokens hlength hblocks
    refine ⟨blocks, ?_, hlength, fun i cs block hcs hblock => ?_⟩
    · have hend (n : Nat) : ((1 + n : Nat) : Int) - 1 = n := by omega
      rw [scan, splitLines_eq_splitOn, htokens, hend]
    · have hblock := hblocks i cs block hcs hblock
      rwa [Nat.add_comm] at hblock

theorem tokenize_blocks_mixed :
    let source := "x = rf'a' # c\n\t1.5e3"
    let tokens : List Token := [⟨.identifier, some "x", 1, 0, none⟩, ⟨.assign, some "=", 1, 2, none⟩,
      ⟨.frstring, some "a", 1, 4, none⟩, ⟨.newline, some "\\\\n", 1, 13, none⟩, ⟨.number, some "1.5e3", 2, 1, none⟩,
      ⟨.newline, some "\\\\n", 2, 6, none⟩, ⟨.eof, none, 2, 0, none⟩]
    tokenize source = .ok tokens ∧
      ∃ blocks : List (List Token), tokens = blocks.flatten ++ [⟨.eof, none, 2, 0, none⟩] ∧ blocks.length = 2 ∧
        ∀ i cs block, ["x = rf'a' # c".toList, "\t1.5e3".toList][i]? = some cs → blocks[i]? = some block →
          IsBlock (i + 1) cs block := by
  intro source tokens
  have h : tokenize source = .ok tokens := by decide +kernel
  have hlines : source.toList.splitOn '\n' = ["x = rf'a' # c".toList, "\t1.5e3".toList] := by decide +kernel
  have hblocks := tokenize_blocks h
  rw [hlines] at hblocks
  exact ⟨h, hblocks⟩

end BraceLang
